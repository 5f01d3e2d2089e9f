/-
Insertions with ids match the record.

A counter refers to a place in the program until it receives the id of that place.
- `resolveCounter_of_mem`, `exists_mem_of_counts`, `resolveCounter_inj`: the counters of a numbered program are, id by id,
  the counters of its map;
- `insertions_match_trace`: no counter is without an id, the insertions increment every counter of the map once and nothing
  else, and the trace in the preamble has a place for just these counters.
-/
import Turnstile.Proofs.Coverage.InitialTrace
import Turnstile.Proofs.Emit.Counters

namespace Turnstile

/-! ## Ids of one table -/

namespace CoverageIndex

variable {ids : List (Address × ℕ)} {places : List (Address × Node)}

theorem idOf_eq_ok_iff {a : Address} {id : ℕ} : idOf ids a = .ok id ↔ ids.lookup a = some id := by
  unfold idOf
  cases ids.lookup a <;> simp

/-- a numbered place has an id in range -/
theorem idOf_of_mem (h : IsNumbering ids places) {a : Address} {n : Node} (hm : (a, n) ∈ places) :
    ∃ id, idOf ids a = .ok id ∧ 0 < id ∧ places[id - 1]? = some (a, n) := by
  obtain ⟨i, hi⟩ := List.getElem?_of_mem hm
  exact ⟨i + 1, idOf_eq_ok_iff.2 ((h.lookup_eq_some_iff a (i + 1)).2 ⟨n, by omega, hi⟩), by omega, hi⟩

/-- an id in range belongs to a numbered place -/
theorem exists_idOf_of_le (h : IsNumbering ids places) {id : ℕ} (hid : 0 < id) (hlen : id ≤ places.length) :
    ∃ a n, (a, n) ∈ places ∧ places[id - 1]? = some (a, n) ∧ idOf ids a = .ok id := by
  have hget : places[id - 1]? = some places[id - 1] := List.getElem?_eq_getElem (by omega)
  exact ⟨_, _, List.mem_of_getElem? hget, hget,
    idOf_eq_ok_iff.2 ((h.lookup_eq_some_iff _ id).2 ⟨_, hid, hget⟩)⟩

/-- two places do not share an id -/
theorem idOf_inj (h : IsNumbering ids places) {a b : Address} {id : ℕ} (ha : idOf ids a = .ok id)
    (hb : idOf ids b = .ok id) : a = b := by
  obtain ⟨n, -, hn⟩ := (h.lookup_eq_some_iff a id).1 (idOf_eq_ok_iff.1 ha)
  obtain ⟨m, -, hm⟩ := (h.lookup_eq_some_iff b id).1 (idOf_eq_ok_iff.1 hb)
  rw [hn] at hm
  exact congrArg Prod.fst (Option.some.inj hm)

/-! ## Counters with ids -/

variable {index : CoverageIndex} {program : Node}

/-- the map has as many entries as the program has places of each kind -/
theorem Numbers.counts_branch_iff (h : index.Numbers places) {id slot : ℕ} :
    index.map.Counts (.branch id slot) ↔
      0 < id ∧ ∃ p, (places.filter fun p => p.2.isBranch)[id - 1]? = some p ∧ slot < p.2.alternatives.length := by
  have hget := congrArg (·[id - 1]?) h.branches
  simp only [List.getElem?_map] at hget
  constructor
  · rintro ⟨hid, b, hb, hslot⟩
    rw [hb, Option.map_some, eq_comm, Option.map_eq_some_iff] at hget
    obtain ⟨p, hp, hplaces⟩ := hget
    have halternatives : b.alternatives = p.2.alternativeLocations := (congrArg Prod.snd hplaces).symm
    exact ⟨hid, p, hp, by simpa [halternatives, Node.alternativeLocations] using hslot⟩
  · rintro ⟨hid, p, hp, hslot⟩
    rw [hp, Option.map_some, Option.map_eq_some_iff] at hget
    obtain ⟨b, hb, hplaces⟩ := hget
    have halternatives : b.alternatives = p.2.alternativeLocations := congrArg Prod.snd hplaces
    exact ⟨hid, b, hb, by simpa [halternatives, Node.alternativeLocations] using hslot⟩

theorem Numbers.length_statements (h : index.Numbers places) :
    index.map.statements.length = (places.filter fun p => p.2.isCounted).length := by
  rw [h.statements, List.length_map]

theorem Numbers.length_functions (h : index.Numbers places) :
    index.map.functions.length = (places.filter fun p => p.2.isFunction).length := by
  rw [← List.length_map FunctionInfo.location, h.functions, List.length_map]

theorem isBranch_of_alternatives {n : Node} {slot : ℕ} (h : slot < n.alternatives.length) : n.isBranch = true := by
  cases n <;> first | rfl | exact absurd h (Nat.not_lt_zero _)

/-- **Every counter of a numbered program has an id, under which the map has an entry.** -/
theorem resolveCounter_of_mem (h : index.Numbers (program.preorder .root)) {c : Counter Address}
    (hc : c ∈ program.allCounters .root) : ∃ c', index.resolveCounter c = .ok c' ∧ index.map.Counts c' := by
  obtain ⟨⟨a, n⟩, hp, hc⟩ := Node.mem_allCounters_iff.1 hc
  cases c with
  | statement b =>
    obtain ⟨rfl, hn⟩ := Node.statement_mem_counters_iff.1 hc
    obtain ⟨id, hok, hid, hget⟩ := idOf_of_mem h.statementIds (List.mem_filter.2 ⟨hp, hn⟩)
    have hlen := (List.getElem?_eq_some_iff.1 hget).1
    exact ⟨.statement id, map_eq_ok_iff.2 ⟨id, hok, rfl⟩, hid, by rw [h.length_statements]; omega⟩
  | function b =>
    obtain ⟨rfl, hn⟩ := Node.function_mem_counters_iff.1 hc
    obtain ⟨id, hok, hid, hget⟩ := idOf_of_mem h.functionIds (List.mem_filter.2 ⟨hp, hn⟩)
    have hlen := (List.getElem?_eq_some_iff.1 hget).1
    exact ⟨.function id, map_eq_ok_iff.2 ⟨id, hok, rfl⟩, hid, by rw [h.length_functions]; omega⟩
  | branch b slot =>
    obtain ⟨rfl, hslot⟩ := Node.branch_mem_counters_iff.1 hc
    obtain ⟨id, hok, hid, hget⟩ :=
      idOf_of_mem h.branchIds (List.mem_filter.2 ⟨hp, isBranch_of_alternatives hslot⟩)
    exact ⟨.branch id slot, map_eq_ok_iff.2 ⟨id, hok, rfl⟩, h.counts_branch_iff.2 ⟨hid, _, hget, hslot⟩⟩

/-- **Every counter of the map belongs to a counter of the program.** -/
theorem exists_mem_of_counts (h : index.Numbers (program.preorder .root)) {c' : Counter ℕ}
    (hc : index.map.Counts c') : ∃ c ∈ program.allCounters .root, index.resolveCounter c = .ok c' := by
  cases c' with
  | statement id =>
    obtain ⟨hid, hlen⟩ := hc
    rw [h.length_statements] at hlen
    obtain ⟨a, n, hm, -, hok⟩ := exists_idOf_of_le h.statementIds hid hlen
    obtain ⟨hp, hn⟩ := List.mem_filter.1 hm
    exact ⟨.statement a, Node.mem_allCounters_iff.2 ⟨_, hp, Node.statement_mem_counters_iff.2 ⟨rfl, hn⟩⟩,
      map_eq_ok_iff.2 ⟨id, hok, rfl⟩⟩
  | function id =>
    obtain ⟨hid, hlen⟩ := hc
    rw [h.length_functions] at hlen
    obtain ⟨a, n, hm, -, hok⟩ := exists_idOf_of_le h.functionIds hid hlen
    obtain ⟨hp, hn⟩ := List.mem_filter.1 hm
    exact ⟨.function a, Node.mem_allCounters_iff.2 ⟨_, hp, Node.function_mem_counters_iff.2 ⟨rfl, hn⟩⟩,
      map_eq_ok_iff.2 ⟨id, hok, rfl⟩⟩
  | branch id slot =>
    obtain ⟨hid, p, hget, hslot⟩ := h.counts_branch_iff.1 hc
    have hlen := (List.getElem?_eq_some_iff.1 hget).1
    obtain ⟨a, n, hm, hget', hok⟩ := exists_idOf_of_le h.branchIds hid (by omega)
    obtain rfl : p = (a, n) := Option.some.inj (hget.symm.trans hget')
    exact ⟨.branch a slot, Node.mem_allCounters_iff.2
      ⟨_, (List.mem_filter.1 hm).1, Node.branch_mem_counters_iff.2 ⟨rfl, hslot⟩⟩, map_eq_ok_iff.2 ⟨id, hok, rfl⟩⟩

/-- two counters do not share an id -/
theorem resolveCounter_inj (h : index.Numbers places) {c d : Counter Address} {c' : Counter ℕ}
    (hc : index.resolveCounter c = .ok c') (hd : index.resolveCounter d = .ok c') : c = d := by
  cases c <;> cases d <;> obtain ⟨i, hi, rfl⟩ := map_eq_ok_iff.1 hc <;> obtain ⟨j, hj, he⟩ := map_eq_ok_iff.1 hd <;>
    cases he
  · exact congrArg _ (idOf_inj h.statementIds hi hj)
  · exact congrArg _ (idOf_inj h.functionIds hi hj)
  · exact congrArg (Counter.branch · _) (idOf_inj h.branchIds hi hj)

/-! ## Insertions with ids -/

theorem resolve_cons_eq_ok_iff {e : Edit} {es : List Edit} {l : List (Insertion (Snippet ℕ))} :
    index.resolve (e :: es) = .ok l ↔ ∃ s rest, index.resolveSnippet e.payload = .ok s ∧ index.resolve es = .ok rest ∧
      l = ⟨e.offset, s, e.closing⟩ :: rest := by
  rw [resolve, List.mapM_cons]
  constructor
  · intro h
    obtain ⟨e', he, h⟩ := bind_eq_ok_iff.1 h
    obtain ⟨s, hs, he⟩ := bind_eq_ok_iff.1 he
    obtain ⟨rest, hrest, h⟩ := bind_eq_ok_iff.1 h
    cases he
    cases h
    exact ⟨s, rest, hs, hrest, rfl⟩
  · rintro ⟨s, rest, hs, hrest, rfl⟩
    exact bind_eq_ok_iff.2 ⟨_, bind_eq_ok_iff.2 ⟨s, hs, rfl⟩, bind_eq_ok_iff.2 ⟨rest, hrest, rfl⟩⟩

/-- insertions whose counters all have ids receive them -/
theorem exists_resolve {es : List Edit} (h : ∀ c ∈ countersOf es, ∃ c', index.resolveCounter c = .ok c') :
    ∃ insertions, index.resolve es = .ok insertions ∧
      List.Forall₂ (fun c c' => index.resolveCounter c = .ok c') (countersOf es) (countersOf insertions) := by
  induction es with
  | nil => exact ⟨[], rfl, .nil⟩
  | cons e es ih =>
    obtain ⟨offset, ⟨before, counter, after⟩, closing⟩ := e
    cases counter with
    | none =>
      obtain ⟨rest, hrest, hall⟩ := ih h
      exact ⟨_, resolve_cons_eq_ok_iff.2 ⟨⟨before, none, after⟩, rest, rfl, hrest, rfl⟩, hall⟩
    | some c =>
      obtain ⟨rest, hrest, hall⟩ := ih fun d hd => h d (List.mem_cons_of_mem _ hd)
      obtain ⟨c', hc⟩ := h c List.mem_cons_self
      exact ⟨_, resolve_cons_eq_ok_iff.2
        ⟨⟨before, some c', after⟩, rest, bind_eq_ok_iff.2 ⟨c', hc, rfl⟩, hrest, rfl⟩, .cons hc hall⟩

/-- what has different ids is different -/
theorem nodup_of_resolved (h : index.Numbers places) {cs : List (Counter Address)} {cs' : List (Counter ℕ)}
    (hall : List.Forall₂ (fun c c' => index.resolveCounter c = .ok c') cs cs') (hnodup : cs.Nodup) : cs'.Nodup := by
  induction hall with
  | nil => exact .nil
  | @cons c c' cs cs' hc hall ih =>
    rw [List.nodup_cons] at hnodup
    refine List.nodup_cons.2 ⟨fun hm => hnodup.1 ?_, ih hnodup.2⟩
    obtain ⟨d, hd, hdc⟩ := exists_left_of_forall₂ hall hm
    rwa [resolveCounter_inj h hc hdc]

end CoverageIndex

/-- **Every counter in a numbered program receives its id.** -/
theorem CoverageIndex.exists_resolve_programEdits (style : EmitStyle) (src : SourceText) (key : String) {span : Span}
    {body : List Node} {index : CoverageIndex} (hw : WellPlaced true (.program span body))
    (hindex : CoverageIndex.ofProgram (.program span body) = .ok index) :
    ∃ insertions, index.resolve (programEdits style src (.program span body) index.map key) = .ok insertions ∧
      List.Forall₂ (fun c c' => index.resolveCounter c = .ok c')
        (countersOf (programEdits style src (.program span body) index.map key)) (countersOf insertions) := by
  refine exists_resolve fun c hc => ?_
  have hperm := programEdits_perm_allCounters style src index.map key rfl hw (isComplete_of_ok hindex) rfl
  obtain ⟨c', hok, -⟩ := resolveCounter_of_mem (numbers_of_ok hindex) (hperm.mem_iff.1 hc)
  exact ⟨c', hok⟩

/-! ## Insertions and the record -/

/-- **Insertions match the record.** For a program that is lowered and numbered, no counter is without an id. Every counter of
the map is incremented by exactly one insertion, and no insertion increments anything else. These are the counters that
the trace in the preamble has a place for. -/
theorem insertions_match_trace (style : EmitStyle) (key : String) {depth : ℕ} {src : SourceText} {root : Tree}
    {program : Node} {index : CoverageIndex} (hprogram : Lowering.program depth src root = .ok program)
    (hindex : CoverageIndex.ofProgram program = .ok index) :
    (∀ e, generate? style src program index key ≠ .error (.unnumbered e)) ∧
    ∃ insertions, index.resolve (programEdits style src program index.map key) = .ok insertions ∧
      (∀ c, index.map.Counts c → (countersOf insertions).count c = 1) ∧
      (∀ c ∈ countersOf insertions, index.map.Counts c) ∧
      (∀ c, (Trace.initial index.map (style.code src)).Has c ↔ ∃ c', index.map.Counts c' ∧ c = c'.map Int.ofNat) ∧
      ∃ offset separator, insertions.head? = some (.opening offset (.plain (separator ++
        preamble style.traceVariable key (Trace.initial index.map (style.code src)).toJson style.compact))) := by
  obtain ⟨body, rfl, hw⟩ := Lowering.wellPlaced_of_program hprogram
  have hnumbers := CoverageIndex.numbers_of_ok hindex
  have hperm := programEdits_perm_allCounters style src index.map key rfl hw (CoverageIndex.isComplete_of_ok hindex) rfl
  obtain ⟨insertions, hresolve, hall⟩ := CoverageIndex.exists_resolve_programEdits style src key hw hindex
  have hnodup : (countersOf insertions).Nodup :=
    CoverageIndex.nodup_of_resolved hnumbers hall (hperm.nodup_iff.2 (Node.nodup_allCounters _ _))
  refine ⟨fun e he => ?_, insertions, hresolve, fun c hc => ?_, fun c hc => ?_, Trace.has_initial_iff _ _, ?_⟩
  · rw [generate?, hresolve] at he
    dsimp only at he
    split at he <;> cases he
  · obtain ⟨d, hd, hdc⟩ := CoverageIndex.exists_mem_of_counts hnumbers hc
    obtain ⟨c', hc', hok⟩ := exists_right_of_forall₂ hall (hperm.mem_iff.2 hd)
    rw [hdc] at hok
    cases hok
    exact List.count_eq_one_of_mem hnodup hc'
  · obtain ⟨d, hd, hok⟩ := exists_left_of_forall₂ hall hc
    obtain ⟨c', hok', hc'⟩ := CoverageIndex.resolveCounter_of_mem hnumbers (hperm.mem_iff.1 hd)
    rw [hok] at hok'
    cases hok'
    exact hc'
  · obtain ⟨s, rest, hs, -, rfl⟩ := CoverageIndex.resolve_cons_eq_ok_iff.1 hresolve
    cases hs
    exact ⟨_, _, rfl⟩

/-- `"a"; p ? q : r;` -/
def choiceTree : Tree :=
  .node "program" 0 15 [
    .node "expression_statement" 0 4 [.leaf "string" 0 3],
    .node "expression_statement" 5 15 [.node "ternary_expression" 5 14 [(Tree.leaf "identifier" 5 6).inField "condition",
      (Tree.leaf "identifier" 9 10).inField "consequence", (Tree.leaf "identifier" 13 14).inField "alternative"]]]

theorem choiceTree_counted : ∃ program index insertions,
    Lowering.program Lowering.usualDepth (.ofString "\"a\"; p ? q : r;") choiceTree = .ok program ∧
    CoverageIndex.ofProgram program = .ok index ∧
    index.resolve (programEdits ⟨"trace", true, false⟩ (.ofString "\"a\"; p ? q : r;") program index.map "a.js") =
      .ok insertions ∧
    (countersOf insertions).count (.statement 1) = 1 ∧ (countersOf insertions).count (.branch 1 1) = 1 := by
  have hok : ((Lowering.program Lowering.usualDepth (.ofString "\"a\"; p ? q : r;") choiceTree).toOption.bind fun program =>
      (CoverageIndex.ofProgram program).toOption.map fun index =>
        (index.map.statements.length, index.map.branches.map fun b => b.alternatives.length)) =
      some (2, [2]) := by decide +kernel
  rw [Option.bind_eq_some_iff] at hok
  obtain ⟨program, hprogram, hok⟩ := hok
  rw [Option.map_eq_some_iff] at hok
  obtain ⟨index, hindex, hsizes⟩ := hok
  obtain ⟨hstatements, hbranches⟩ := Prod.mk.inj hsizes
  have hprogram := ok_of_toOption hprogram
  have hindex := ok_of_toOption hindex
  obtain ⟨-, insertions, hresolve, honce, -⟩ := insertions_match_trace ⟨"trace", true, false⟩ "a.js" hprogram hindex
  obtain ⟨b, hb, hslots⟩ := List.map_eq_singleton_iff.1 hbranches
  refine ⟨program, index, insertions, hprogram, hindex, hresolve, honce _ ⟨by omega, by omega⟩, honce _ ?_⟩
  exact ⟨by omega, b, by rw [hb]; rfl, by omega⟩

end Turnstile
