/-
Coverage only grows.

The counters of a trace are the places that it counts at; one is covered if its count is not zero.
- `Trace.count?`: the count of a counter, in whichever table it stands;
- `Trace.count?_merge`: merging adds counter by counter, where either trace has the counter;
- `Trace.counters`: the counters of a category, each once; a tally counts the covered ones and all of them (`tally_eq`);
- `coverage_grows`: if no count is negative, merging covers what either trace covers, has the counters that either has, and
  no tally falls.
-/
import Turnstile.Proofs.Coverage.Counting
import Turnstile.Proofs.Coverage.InitialTrace

namespace Turnstile

namespace Trace

/-! ## Counts by counter -/

/-- the count of a counter, if the trace has it -/
def count? (t : Trace) : Counter ℤ → Option ℤ
  | .statement id => t.statements.get? id
  | .function id => t.functions.get? id
  | .branch id slot => (t.branches.get? id).bind fun counts => counts[slot]?

/-- a counter of the trace that counts something -/
def Covers (t : Trace) (c : Counter ℤ) : Prop := ∃ n, t.count? c = some n ∧ n ≠ 0

/-- no count is below zero -/
structure Nonnegative (t : Trace) : Prop where
  statements : ∀ e ∈ t.statements.entries, 0 ≤ e.2
  branches : ∀ e ∈ t.branches.entries, ∀ n ∈ e.2, 0 ≤ n
  functions : ∀ e ∈ t.functions.entries, 0 ≤ e.2

/-- how many alternatives a branch has a count for -/
def alternatives (t : Trace) (id : ℤ) : ℕ := ((t.branches.get? id).getD []).length

variable {t a b : Trace} {c : Counter ℤ}

theorem has_iff_count? : t.Has c ↔ ∃ n, t.count? c = some n := by
  cases c with
  | statement id => exact OrderedMap.mem_keys_iff
  | function id => exact OrderedMap.mem_keys_iff
  | branch id slot =>
    simp only [Has, count?, Option.bind_eq_some_iff, ← OrderedMap.get?_eq_some_iff]
    constructor
    · rintro ⟨counts, hcounts, hslot⟩
      exact ⟨counts[slot], counts, hcounts, List.getElem?_eq_getElem hslot⟩
    · rintro ⟨n, counts, hcounts, hslot⟩
      exact ⟨counts, hcounts, (List.getElem?_eq_some_iff.1 hslot).1⟩

theorem Nonnegative.count (h : t.Nonnegative) {n : ℤ} (hn : t.count? c = some n) : 0 ≤ n := by
  cases c with
  | statement id => exact h.statements _ (OrderedMap.get?_eq_some_iff.1 hn)
  | function id => exact h.functions _ (OrderedMap.get?_eq_some_iff.1 hn)
  | branch id slot =>
    obtain ⟨counts, hcounts, hslot⟩ := Option.bind_eq_some_iff.1 hn
    exact h.branches _ (OrderedMap.get?_eq_some_iff.1 hcounts) n (List.mem_of_getElem? hslot)

/-! ## Counts of a merged trace -/

theorem getElem?_addSlots (xs ys : List ℤ) (i : ℕ) : (addSlots xs ys)[i]? = Option.merge (· + ·) xs[i]? ys[i]? := by
  induction xs generalizing ys i with
  | nil => simp [addSlots]
  | cons x xs ih =>
    cases ys with
    | nil => simp [addSlots]
    | cons y ys =>
      cases i with
      | zero => rfl
      | succ i => exact ih ys i

theorem length_addSlots (xs ys : List ℤ) : (addSlots xs ys).length = max xs.length ys.length := by
  induction xs generalizing ys with
  | nil => simp [addSlots]
  | cons x xs ih =>
    cases ys with
    | nil => simp [addSlots]
    | cons y ys => simp only [addSlots, List.length_cons, ih, Nat.add_max_add_right]

/-- the slots of a branch of a merged trace are those of both added up, if a missing branch has none -/
theorem getD_get?_merge (a b : Trace) (id : ℤ) : ((a.merge b).branches.get? id).getD [] =
    addSlots ((a.branches.get? id).getD []) ((b.branches.get? id).getD []) := by
  rw [merge_eq_absorb, OrderedMap.get?_absorb]
  cases b.branches.get? id with
  | none => cases (a.branches.get? id).getD [] <;> rfl
  | some counts => rfl

/-- **Merging adds counter by counter.** A counter that one trace lacks has the count of the other. -/
theorem count?_merge (a b : Trace) (c : Counter ℤ) : (a.merge b).count? c = Option.merge (· + ·) (a.count? c) (b.count? c) := by
  have hcounts : ∀ (m m' : OrderedMap ℤ ℤ) (id : ℤ), (OrderedMap.absorb (fun o n => o.getD 0 + n) m m').get? id =
      Option.merge (· + ·) (m.get? id) (m'.get? id) := by
    intro m m' id
    rw [OrderedMap.get?_absorb]
    cases m.get? id <;> cases m'.get? id <;> simp
  cases c with
  | statement id => exact hcounts a.statements b.statements id
  | function id => exact hcounts a.functions b.functions id
  | branch id slot =>
    have hslots : ∀ t : Trace, t.count? (.branch id slot) = ((t.branches.get? id).getD [])[slot]? := by
      intro t
      rw [count?]
      cases t.branches.get? id <;> simp
    rw [hslots, hslots, hslots, getD_get?_merge, getElem?_addSlots]

theorem has_merge_iff : (a.merge b).Has c ↔ a.Has c ∨ b.Has c := by
  simp only [has_iff_count?, count?_merge]
  cases a.count? c <;> cases b.count? c <;> simp

/-- a sum of counts is zero only if both are, since none is negative -/
theorem covers_merge_iff (ha : a.Nonnegative) (hb : b.Nonnegative) : (a.merge b).Covers c ↔ a.Covers c ∨ b.Covers c := by
  simp only [Covers, count?_merge]
  cases hx : a.count? c with
  | none => simp
  | some x =>
    cases hy : b.count? c with
    | none => simp
    | some y =>
      have hxy : 0 ≤ x ∧ 0 ≤ y := ⟨ha.count hx, hb.count hy⟩
      simp only [Option.merge_some_some, Option.some.injEq, exists_eq_left']
      omega

theorem alternatives_merge (a b : Trace) (id : ℤ) :
    (a.merge b).alternatives id = max (a.alternatives id) (b.alternatives id) := by
  rw [alternatives, getD_get?_merge, length_addSlots]
  rfl

/-! ## Categories -/

/-- the kinds of counters that are told apart in a summary -/
inductive Category where
  | statements
  | branches
  | functions
  deriving DecidableEq, Repr

/-- the tally of a category -/
def tally (t : Trace) : Category → Tally
  | .statements => t.statementTally
  | .branches => t.branchTally
  | .functions => t.functionTally

/-- the counters of a category in the order of its table -/
def counters (t : Trace) : Category → List (Counter ℤ)
  | .statements => t.statements.keys.map .statement
  | .branches => t.branches.entries.flatMap fun e => (List.range e.2.length).map (.branch e.1)
  | .functions => t.functions.keys.map .function

/-- the category that a counter belongs to -/
def category : Counter ℤ → Category
  | .statement _ => .statements
  | .branch _ _ => .branches
  | .function _ => .functions

theorem mem_counters_iff {k : Category} : c ∈ t.counters k ↔ category c = k ∧ t.Has c := by
  cases k <;> cases c <;> simp [counters, category, Has]

theorem nodup_counters (t : Trace) (k : Category) : (t.counters k).Nodup := by
  cases k with
  | statements => exact t.statements.nodup_keys.map fun _ _ h => Counter.statement.inj h
  | functions => exact t.functions.nodup_keys.map fun _ _ h => Counter.function.inj h
  | branches =>
    have hids : t.branches.entries.Pairwise fun e e' => e.1 ≠ e'.1 := List.pairwise_map.1 t.branches.nodup_keys
    refine List.nodup_flatMap.2 ⟨fun e _ => ?_, hids.imp ?_⟩
    · exact List.nodup_range.map fun _ _ h => (Counter.branch.inj h).2
    · intro e e' hne c hc hc'
      obtain ⟨i, -, rfl⟩ := List.mem_map.1 hc
      obtain ⟨j, -, h⟩ := List.mem_map.1 hc'
      exact hne (Counter.branch.inj h).1.symm

/-! ## Tallies -/

theorem values_eq_counts (m : OrderedMap ℤ ℤ) : m.values = m.keys.map fun id => (m.get? id).getD 0 := by
  rw [OrderedMap.values, OrderedMap.keys, List.map_map]
  refine List.map_congr_left fun e he => ?_
  rw [Function.comp_apply, OrderedMap.get?_eq_some_iff.2 he, Option.getD_some]

theorem flatten_values_eq (m : OrderedMap ℤ (List ℤ)) : m.values.flatten = m.entries.flatMap fun e =>
    (List.range e.2.length).map fun slot => (((m.get? e.1).bind fun counts => counts[slot]?).getD 0) := by
  rw [OrderedMap.values, ← List.flatMap_def]
  refine List.flatMap_congr fun e he => ?_
  rw [OrderedMap.get?_eq_some_iff.2 he]
  refine List.ext_getElem (by simp) fun slot hslot _ => ?_
  simp [hslot]

/-- **A tally counts the covered counters of its category, and all of them.** -/
theorem tally_eq (t : Trace) (k : Category) :
    t.tally k = ⟨(t.counters k).countP fun c => (t.count? c).getD 0 ≠ 0, (t.counters k).length⟩ := by
  have hcounts : ∀ cs : List (Counter ℤ), Tally.ofCounts (cs.map fun c => (t.count? c).getD 0) =
      ⟨cs.countP fun c => (t.count? c).getD 0 ≠ 0, cs.length⟩ := by
    intro cs
    simp [Tally.ofCounts, List.countP_map, Function.comp_def]
  rw [← hcounts]
  cases k with
  | statements =>
    refine congrArg Tally.ofCounts ((values_eq_counts _).trans ?_)
    rw [counters, List.map_map]
    rfl
  | functions =>
    refine congrArg Tally.ofCounts ((values_eq_counts _).trans ?_)
    rw [counters, List.map_map]
    rfl
  | branches =>
    refine congrArg Tally.ofCounts ((flatten_values_eq _).trans ?_)
    simp only [counters, List.map_flatMap, List.map_map]
    rfl

theorem covers_iff_getD : t.Covers c ↔ (t.count? c).getD 0 ≠ 0 := by
  cases h : t.count? c <;> simp [Covers, h]

end Trace

/-- as many covered and as many in all, or more -/
instance : LE Tally := ⟨fun x y => x.covered ≤ y.covered ∧ x.total ≤ y.total⟩

namespace Trace

variable {a b : Trace}

theorem covered_le_total (t : Trace) (k : Category) : (t.tally k).covered ≤ (t.tally k).total := by
  rw [tally_eq]
  exact List.countP_le_length

/-- a trace that has and covers all that another does has no smaller tally -/
theorem tally_le_tally (hhas : ∀ c, a.Has c → b.Has c) (hcovers : ∀ c, a.Covers c → b.Covers c) (k : Category) :
    a.tally k ≤ b.tally k := by
  have hsubset : a.counters k ⊆ b.counters k := fun c hc => mem_counters_iff.2 ((mem_counters_iff.1 hc).imp_right (hhas c))
  have hcovered : (a.counters k).filter (fun c => (a.count? c).getD 0 ≠ 0) ⊆
      (b.counters k).filter fun c => (b.count? c).getD 0 ≠ 0 := by
    intro c hc
    obtain ⟨hmem, hcount⟩ := List.mem_filter.1 hc
    have hb := covers_iff_getD.1 (hcovers c (covers_iff_getD.2 (of_decide_eq_true hcount)))
    exact List.mem_filter.2 ⟨hsubset hmem, decide_eq_true hb⟩
  rw [tally_eq, tally_eq]
  constructor
  · simp only [List.countP_eq_length_filter]
    exact ((a.nodup_counters k).filter _).length_le_of_subset hcovered
  · exact (a.nodup_counters k).length_le_of_subset hsubset

end Trace

/-- **Coverage only grows.** If two traces have no negative count, merging covers a counter exactly if one of them covers it,
and has a counter exactly if one of them has it; a branch of one is a branch of both together, with as many alternatives as
the longer list. So in each category no more is covered than there is, and neither the covered counters nor all of them are
fewer than in either trace. -/
theorem coverage_grows {a b : Trace} (ha : a.Nonnegative) (hb : b.Nonnegative) :
    (∀ c, (a.merge b).Covers c ↔ a.Covers c ∨ b.Covers c) ∧
    (∀ c, (a.merge b).Has c ↔ a.Has c ∨ b.Has c) ∧
    (∀ id, (id ∈ (a.merge b).branches.keys ↔ id ∈ a.branches.keys ∨ id ∈ b.branches.keys) ∧
      (a.merge b).alternatives id = max (a.alternatives id) (b.alternatives id)) ∧
    ∀ k, a.tally k ≤ (a.merge b).tally k ∧ b.tally k ≤ (a.merge b).tally k ∧
      ((a.merge b).tally k).covered ≤ ((a.merge b).tally k).total := by
  have hcovers : ∀ c, (a.merge b).Covers c ↔ a.Covers c ∨ b.Covers c := fun c => Trace.covers_merge_iff ha hb
  have hhas : ∀ c, (a.merge b).Has c ↔ a.Has c ∨ b.Has c := fun c => Trace.has_merge_iff
  refine ⟨hcovers, hhas, fun id => ⟨?_, Trace.alternatives_merge a b id⟩, fun k => ⟨?_, ?_, Trace.covered_le_total _ k⟩⟩
  · rw [Trace.merge_eq_absorb]
    exact OrderedMap.mem_keys_absorb_iff _
  · exact Trace.tally_le_tally (fun c hc => (hhas c).2 (Or.inl hc)) (fun c hc => (hcovers c).2 (Or.inl hc)) k
  · exact Trace.tally_le_tally (fun c hc => (hhas c).2 (Or.inr hc)) (fun c hc => (hcovers c).2 (Or.inr hc)) k

/-! ### A branch that got longer -/

/-- one statement of two reached, and a branch with one alternative -/
def earlierTrace : Trace := ⟨.ofList [(1, 2), (2, 0)], .ofList [(1, [1])], .ofList [(1, 0)], none⟩

/-- another statement reached, two alternatives of the same branch, and a branch before it -/
def laterTrace : Trace := ⟨.ofList [(2, 3), (3, 0)], .ofList [(2, [0]), (1, [0, 4])], .ofList [(1, 5)], none⟩

theorem traces_grow_together : earlierTrace.Nonnegative ∧ laterTrace.Nonnegative ∧
    (earlierTrace.merge laterTrace).alternatives 1 = 2 ∧ (earlierTrace.merge laterTrace).Covers (.branch 1 1) ∧
    earlierTrace.tally .branches = ⟨1, 1⟩ ∧ laterTrace.tally .branches = ⟨1, 3⟩ ∧
    (earlierTrace.merge laterTrace).tally .branches = ⟨2, 3⟩ ∧
    earlierTrace.tally .statements ≤ (earlierTrace.merge laterTrace).tally .statements := by
  have hearlier : earlierTrace.Nonnegative := ⟨by decide, by decide, by decide⟩
  have hlater : laterTrace.Nonnegative := ⟨by decide, by decide, by decide⟩
  obtain ⟨hcovers, -, hbranches, htallies⟩ := coverage_grows hearlier hlater
  refine ⟨hearlier, hlater, (hbranches 1).2, (hcovers _).2 (Or.inr ⟨4, by decide, by decide⟩), by decide, by decide, by decide,
    (htallies .statements).1⟩

end Turnstile
