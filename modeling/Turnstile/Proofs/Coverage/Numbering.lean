/-
Which node has which id.

Ids come from table lengths at the moment of a visit; here they are places in the pre-order of the program.
- `visit_ok` says all that a visit can do to the three tables, `Records.visit` what it preserves and `records_of_ok` what a
  whole walk preserves: after the visits to some places, each table holds one entry for each place it counts, in order.
- `IsNumbering` says that a table of ids is a bijection between some places and the numbers from one on.
- `ofProgram_numbers_preorder`: the index of a program numbers the counted statements, the branching constructs and the
  functions of its pre-order, and its map has their locations under these numbers. The ids of a walk are always dense.
-/
import Turnstile.Proofs.Program.Preorder

namespace Turnstile

/-! ## What is counted -/

namespace Node

/-- what a construct chooses between, in slot order; without an `else`, the second slot of an `if` is for the `if` itself -/
def alternatives : Node → List Node
  | ifStatement span test consequent alternate =>
    [consequent, alternate.getD (ifStatement span test consequent alternate)]
  | switchStatement _ _ cases => cases
  | conditional _ _ consequent alternate => consequent.toList ++ alternate.toList
  | logical _ _ left right => left.toList ++ right.toList
  | _ => []

/-- an expression that chooses has what it chooses between, and a function has a body -/
def isComplete : Node → Bool
  | conditional _ _ consequent alternate => consequent.isSome && alternate.isSome
  | logical _ _ left right => left.isSome && right.isSome
  | function _ _ _ _ body => body.isSome
  | _ => true

def alternativeLocations (n : Node) : List Location := n.alternatives.map fun m => m.span.location

end Node

/-! ## Ids of places -/

/-- the ids of some places: one, two, three and so on -/
def idsOf (places : List (Address × Node)) : List (Address × ℕ) := places.zipIdx.map fun (p, i) => (p.1, i + 1)

/-- a table of ids is a bijection between some places and the numbers from one on, the i-th place having the id i -/
structure IsNumbering (ids : List (Address × ℕ)) (places : List (Address × Node)) : Prop where
  lookup_eq_some_iff : ∀ a i, ids.lookup a = some i ↔ ∃ n, 0 < i ∧ places[i - 1]? = some (a, n)
  bijOn : Set.BijOn (fun a => (ids.lookup a).getD 0) {a | ∃ n, (a, n) ∈ places} (Set.Icc 1 places.length)

theorem map_fst_idsOf (places : List (Address × Node)) : (idsOf places).map Prod.fst = places.map Prod.fst := by
  rw [idsOf, List.map_map]
  conv_rhs => rw [← List.zipIdx_map_fst 0 places, List.map_map]
  rfl

theorem idsOf_append (places : List (Address × Node)) (p : Address × Node) :
    idsOf (places ++ [p]) = idsOf places ++ [(p.1, places.length + 1)] := by
  simp [idsOf, List.zipIdx_append]

theorem mem_idsOf_iff {places : List (Address × Node)} {a : Address} {i : ℕ} :
    (a, i) ∈ idsOf places ↔ ∃ n, 0 < i ∧ places[i - 1]? = some (a, n) := by
  simp only [idsOf, List.mem_map, Prod.exists, List.mem_zipIdx_iff_getElem?, Prod.mk.injEq]
  constructor
  · rintro ⟨b, n, j, hj, rfl, rfl⟩
    exact ⟨n, by omega, by simpa using hj⟩
  · rintro ⟨n, hi, hn⟩
    exact ⟨a, n, i - 1, hn, rfl, by omega⟩

/-- a key that occurs once is looked up by its entry -/
theorem lookup_eq_some_iff_mem {β : Type} {l : List (Address × β)} (h : (l.map Prod.fst).Nodup) {a : Address} {b : β} :
    l.lookup a = some b ↔ (a, b) ∈ l := by
  induction l with
  | nil => simp
  | cons e l ih =>
    obtain ⟨k, v⟩ := e
    rw [List.map_cons, List.nodup_cons] at h
    by_cases hk : a = k
    · subst hk
      have hnot : (a, b) ∉ l := fun hm => h.1 (List.mem_map.2 ⟨_, hm, rfl⟩)
      simp [hnot, eq_comm]
    · have hbeq : (a == k) = false := by simpa using hk
      simp [List.lookup_cons, hbeq, hk, ih h.2]

theorem isNumbering_idsOf {places : List (Address × Node)} (h : (places.map Prod.fst).Nodup) :
    IsNumbering (idsOf places) places := by
  have hlookup : ∀ a i, (idsOf places).lookup a = some i ↔ ∃ n, 0 < i ∧ places[i - 1]? = some (a, n) := by
    intro a i
    rw [lookup_eq_some_iff_mem (by rwa [map_fst_idsOf]), mem_idsOf_iff]
  have hsome : ∀ a n, (a, n) ∈ places → ∃ i, places[i]? = some (a, n) ∧ (idsOf places).lookup a = some (i + 1) := by
    intro a n hm
    obtain ⟨i, hi⟩ := List.getElem?_of_mem hm
    exact ⟨i, hi, (hlookup a (i + 1)).2 ⟨n, by omega, hi⟩⟩
  refine ⟨hlookup, ?_, ?_, ?_⟩
  · rintro a ⟨n, hm⟩
    obtain ⟨i, hi, hl⟩ := hsome a n hm
    have hlen := (List.getElem?_eq_some_iff.1 hi).1
    simp only [hl, Option.getD_some, Set.mem_Icc]
    omega
  · rintro a ⟨n, hm⟩ b ⟨m, hm'⟩ hab
    obtain ⟨i, hi, hl⟩ := hsome a n hm
    obtain ⟨j, hj, hl'⟩ := hsome b m hm'
    simp only [hl, hl', Option.getD_some] at hab
    obtain rfl : i = j := by omega
    rw [hi] at hj
    exact congrArg Prod.fst (Option.some.inj hj)
  · rintro i ⟨hi, hlen⟩
    have hget : places[i - 1]? = some places[i - 1] := List.getElem?_eq_getElem (by omega)
    have hl : (idsOf places).lookup places[i - 1].1 = some i :=
      (hlookup _ i).2 ⟨places[i - 1].2, by omega, hget⟩
    exact ⟨places[i - 1].1, ⟨places[i - 1].2, List.getElem_mem _⟩, by simp [hl]⟩

/-! ## One table -/

theorem numbered_append {α : Type} (xs : List α) (x : α) :
    numbered (xs ++ [x]) = numbered xs ++ [(((xs.length + 1 : ℕ) : ℤ), x)] := by
  simp [numbered, List.zipIdx_append]

theorem length_numbered {α : Type} (xs : List α) : (numbered xs).length = xs.length := by
  simp [numbered]

/-- the ids of numbered entries depend on their number only -/
theorem map_fst_numbered {α β : Type} (f : α → β) (xs : List α) :
    (numbered (xs.map f)).map Prod.fst = (numbered xs).map Prod.fst := by
  simp [numbered, List.zipIdx_map, List.map_map, Function.comp_def]

theorem map_snd_numbered {α : Type} (xs : List α) : (numbered xs).map Prod.snd = xs := by
  rw [numbered, List.map_map]
  conv_rhs => rw [← List.zipIdx_map_fst 0 xs]
  rfl

/-- a table has an entry for each of some places, in their order; `view` is what is said about an entry -/
structure Table.Holds {α β : Type} (t : Table α) (view : α → β) (places : List (Address × Node))
    (info : Node → β) : Prop where
  entries : t.entries.toList.map (fun e => (e.1, view e.2)) = numbered (places.map fun p => info p.2)
  ids : t.ids.toList = idsOf places

namespace Table

variable {α β : Type} {t : Table α} {view : α → β} {places : List (Address × Node)} {info : Node → β}

theorem holds_empty : (Table.empty : Table α).Holds view [] info := ⟨rfl, rfl⟩

theorem Holds.nextId_eq (h : t.Holds view places info) : t.nextId = places.length + 1 := by
  have hlen := congrArg List.length h.entries
  rw [length_numbered] at hlen
  simpa [nextId] using hlen

theorem Holds.add (h : t.Holds view places info) (a : Address) (n : Node) (x : α) (hx : view x = info n) :
    (t.add a x).Holds view (places ++ [(a, n)]) info := by
  have hid := h.nextId_eq
  refine ⟨?_, ?_⟩
  · simp [Table.add, h.entries, hid, hx, numbered_append]
  · simp [Table.add, h.ids, hid, idsOf_append]

/-- the entries of a table are dense, so they can be taken for their list -/
theorem Holds.dense (h : t.Holds view places info) (table : CounterKind) :
    dense? table t.entries.toList = .ok (t.entries.toList.map (·.2)) := by
  have hids : t.entries.toList.map (·.1) = (numbered t.entries.toList).map (·.1) := by
    calc t.entries.toList.map (·.1)
        = (t.entries.toList.map fun e => (e.1, view e.2)).map Prod.fst := by simp [Function.comp_def]
      _ = (numbered (places.map fun p => info p.2)).map Prod.fst := by rw [h.entries]
      _ = (numbered ((numbered (places.map fun p => info p.2)).map Prod.snd)).map Prod.fst := by rw [map_snd_numbered]
      _ = (numbered (t.entries.toList.map fun e => view e.2)).map Prod.fst := by
        rw [← h.entries, List.map_map]
        rfl
      _ = (numbered t.entries.toList).map Prod.fst := map_fst_numbered _ _
  rw [dense?, if_pos hids]

theorem Holds.values (h : t.Holds view places info) :
    (t.entries.toList.map (·.2)).map view = places.map fun p => info p.2 := by
  have hv := congrArg (List.map Prod.snd) h.entries
  rw [map_snd_numbered] at hv
  rw [← hv]
  simp [Function.comp_def]

end Table

/-! ## A walk -/

/-- what is said about a branch in a map: its location and one location for each alternative -/
def BranchInfo.places (b : BranchInfo) : Location × List Location := (b.location, b.alternatives)

/-- the tables after the visits to some places -/
structure Numbering.Records (t : Numbering) (places : List (Address × Node)) : Prop where
  statements : t.statements.Holds id (places.filter fun p => p.2.isCounted) fun n => n.span.location
  branches : t.branches.Holds BranchInfo.places (places.filter fun p => p.2.isBranch)
    fun n => (n.span.location, n.alternativeLocations)
  functions : t.functions.Holds FunctionInfo.location (places.filter fun p => p.2.isFunction) fun n => n.span.location

/-- all that a visit does: it adds an entry to the table of each kind of counter that the node has -/
structure Numbering.Visited (t t' : Numbering) (a : Address) (n : Node) : Prop where
  statements : t'.statements = if n.isCounted then t.statements.add a n.span.location else t.statements
  branches : n.isBranch = true ∧ (∃ b : BranchInfo, b.places = (n.span.location, n.alternativeLocations) ∧
      t'.branches = t.branches.add a b) ∨ n.isBranch = false ∧ t'.branches = t.branches
  functions : n.isFunction = true ∧ (∃ f : FunctionInfo, f.location = n.span.location ∧
      t'.functions = t.functions.add a f) ∨ n.isFunction = false ∧ t'.functions = t.functions

namespace Numbering

theorem visit_ok {t t' : Numbering} {a : Address} {n : Node} (h : t.visit a n = .ok t') : Visited t t' a n := by
  cases n with
  | ifStatement span test consequent alternate =>
    cases h
    refine ⟨rfl, Or.inl ⟨rfl, _, ?_, rfl⟩, Or.inr ⟨rfl, rfl⟩⟩
    cases alternate <;> rfl
  | switchStatement span discriminant cases =>
    cases h
    exact ⟨rfl, Or.inl ⟨rfl, _, rfl, rfl⟩, Or.inr ⟨rfl, rfl⟩⟩
  | conditional span test consequent alternate =>
    cases consequent <;> cases alternate <;> cases h
    exact ⟨rfl, Or.inl ⟨rfl, _, rfl, rfl⟩, Or.inr ⟨rfl, rfl⟩⟩
  | logical span operator left right =>
    cases left <;> cases right <;> cases h
    exact ⟨rfl, Or.inl ⟨rfl, _, rfl, rfl⟩, Or.inr ⟨rfl, rfl⟩⟩
  | function span form name parameters body =>
    cases body <;> cases h
    exact ⟨rfl, Or.inr ⟨rfl, rfl⟩, Or.inl ⟨rfl, _, rfl, rfl⟩⟩
  | directive span value =>
    cases h
    refine ⟨?_, Or.inr ⟨rfl, ?_⟩, Or.inr ⟨rfl, ?_⟩⟩ <;> split_ifs <;> rfl
  | _ =>
    cases h
    exact ⟨rfl, Or.inr ⟨rfl, rfl⟩, Or.inr ⟨rfl, rfl⟩⟩

theorem isComplete_of_visit {t t' : Numbering} {a : Address} {n : Node} (h : t.visit a n = .ok t') :
    n.isComplete = true := by
  cases n with
  | conditional span test consequent alternate =>
    cases consequent <;> cases alternate <;> first | rfl | cases h
  | logical span operator left right =>
    cases left <;> cases right <;> first | rfl | cases h
  | function span form name parameters body =>
    cases body <;> first | rfl | cases h
  | _ => rfl

/-- a walk meets complete nodes only -/
theorem isComplete_of_walk {t t' : Numbering} {places : List (Address × Node)}
    (h : places.foldlM (fun t p => t.visit p.1 p.2) t = .ok t') : ∀ p ∈ places, p.2.isComplete = true := by
  induction places generalizing t with
  | nil => simp
  | cons p places ih =>
    rw [List.foldlM_cons] at h
    cases hv : t.visit p.1 p.2 with
    | error e =>
      rw [hv] at h
      cases h
    | ok t1 =>
      rw [hv] at h
      intro q hq
      rcases List.mem_cons.1 hq with rfl | hq
      · exact isComplete_of_visit hv
      · exact ih h q hq

theorem records_empty : Records .empty [] := ⟨Table.holds_empty, Table.holds_empty, Table.holds_empty⟩

theorem Records.visit {t t' : Numbering} {places : List (Address × Node)} {a : Address} {n : Node}
    (h : t.Records places) (hv : t.visit a n = .ok t') : t'.Records (places ++ [(a, n)]) := by
  obtain ⟨hs, hb, hf⟩ := visit_ok hv
  refine ⟨?_, ?_, ?_⟩
  · rw [hs, List.filter_append]
    by_cases hc : n.isCounted = true
    · simpa [hc] using h.statements.add a n _ rfl
    · simpa [hc] using h.statements
  · rw [List.filter_append]
    rcases hb with ⟨hc, b, hb, ht⟩ | ⟨hc, ht⟩
    · simpa [hc, ht] using h.branches.add a n b hb
    · simpa [hc, ht] using h.branches
  · rw [List.filter_append]
    rcases hf with ⟨hc, f, hf, ht⟩ | ⟨hc, ht⟩
    · simpa [hc, ht] using h.functions.add a n f hf
    · simpa [hc, ht] using h.functions

/-- a walk over some places records these places -/
theorem records_of_ok {t t' : Numbering} {done places : List (Address × Node)} (h : t.Records done)
    (hw : places.foldlM (fun t p => t.visit p.1 p.2) t = .ok t') : t'.Records (done ++ places) := by
  induction places generalizing t done with
  | nil =>
    cases hw
    simpa using h
  | cons p places ih =>
    rw [List.foldlM_cons] at hw
    cases hv : t.visit p.1 p.2 with
    | error e =>
      rw [hv] at hw
      cases hw
    | ok t1 =>
      rw [hv] at hw
      have := ih (h.visit hv) hw
      rwa [List.append_assoc] at this

end Numbering

/-! ## The index of a program -/

/-- an index numbers some places: the statements, branches and functions among them have ids in their order, and the map
has under each id what belongs to that place -/
structure CoverageIndex.Numbers (index : CoverageIndex) (places : List (Address × Node)) : Prop where
  statementIds : IsNumbering index.statementIds (places.filter fun p => p.2.isCounted)
  branchIds : IsNumbering index.branchIds (places.filter fun p => p.2.isBranch)
  functionIds : IsNumbering index.functionIds (places.filter fun p => p.2.isFunction)
  statements : index.map.statements = (places.filter fun p => p.2.isCounted).map fun p => p.2.span.location
  branches : index.map.branches.map BranchInfo.places =
    (places.filter fun p => p.2.isBranch).map fun p => (p.2.span.location, p.2.alternativeLocations)
  functions : index.map.functions.map FunctionInfo.location =
    (places.filter fun p => p.2.isFunction).map fun p => p.2.span.location

namespace CoverageIndex

theorem isNumbering_of_holds {α β : Type} {t : Table α} {view : α → β} {info : Node → β}
    {places : List (Address × Node)} {counts : Address × Node → Bool} (hnodup : (places.map Prod.fst).Nodup)
    (h : t.Holds view (places.filter counts) info) : IsNumbering t.ids.toList (places.filter counts) := by
  rw [h.ids]
  exact isNumbering_idsOf (hnodup.sublist (List.filter_sublist.map _))

/-- recorded places give an index, since their ids are dense -/
theorem ofNumbering?_of_records {t : Numbering} {places : List (Address × Node)} (h : t.Records places)
    (hnodup : (places.map Prod.fst).Nodup) : ∃ index, ofNumbering? t = .ok index ∧ index.Numbers places := by
  refine ⟨⟨⟨t.statements.entries.toList.map (·.2), t.branches.entries.toList.map (·.2),
    t.functions.entries.toList.map (·.2)⟩, t.statements.ids.toList, t.branches.ids.toList, t.functions.ids.toList⟩,
    ?_, ?_⟩
  · simp only [ofNumbering?, CoverageMap.ofNumbered?, h.statements.dense, h.branches.dense, h.functions.dense]
    rfl
  · refine ⟨isNumbering_of_holds hnodup h.statements, isNumbering_of_holds hnodup h.branches,
      isNumbering_of_holds hnodup h.functions, ?_, h.branches.values, h.functions.values⟩
    simpa using h.statements.values

/-- the walk over a program is a walk over its pre-order -/
theorem ofProgram_eq (program : Node) : ofProgram program =
    match (program.preorder .root).foldlM (fun t p => Numbering.visit t p.1 p.2) .empty with
    | .ok t => ofNumbering? t
    | .error .missingOperand => .error .missingOperand := by
  rw [← Node.visits_eq_preorder 0, List.foldlM_map]
  rfl

theorem ofProgram_cases (program : Node) : ofProgram program = .error .missingOperand ∨
    ∃ index, ofProgram program = .ok index ∧ index.Numbers (program.preorder .root) := by
  rw [ofProgram_eq]
  cases hw : (program.preorder .root).foldlM (fun t p => Numbering.visit t p.1 p.2) .empty with
  | error e =>
    cases e
    exact Or.inl rfl
  | ok t => exact Or.inr (ofNumbering?_of_records (Numbering.records_of_ok Numbering.records_empty hw)
      (Node.nodup_preorder _ _))

theorem numbers_of_ok {program : Node} {index : CoverageIndex} (h : ofProgram program = .ok index) :
    index.Numbers (program.preorder .root) := by
  rcases ofProgram_cases program with he | ⟨i, hi, hn⟩
  · rw [he] at h
    cases h
  · rw [hi] at h
    cases h
    exact hn

theorem isComplete_of_ok {program : Node} {index : CoverageIndex} (h : ofProgram program = .ok index) :
    ∀ p ∈ program.preorder .root, p.2.isComplete = true := by
  rw [ofProgram_eq] at h
  cases hw : (program.preorder .root).foldlM (fun t p => Numbering.visit t p.1 p.2) .empty with
  | error e =>
    rw [hw] at h
    cases e
    cases h
  | ok t => exact Numbering.isComplete_of_walk hw

/-- **Ids are places in the pre-order.** The id of a node in the index of a program is its place among the counted
statements, the branching constructs or the functions of the pre-order, and the map has its location under that id. The
ids that a walk gives out are never refused as sparse. -/
theorem ofProgram_numbers_preorder (program : Node) :
    (∀ e, ofProgram program ≠ .error (.sparseIds e)) ∧
    ∀ index, ofProgram program = .ok index → index.Numbers (program.preorder .root) := by
  refine ⟨fun e he => ?_, fun index h => numbers_of_ok h⟩
  rcases ofProgram_cases program with h | ⟨index, h, -⟩
  · rw [h] at he
    cases he
  · rw [h] at he
    cases he

/-- `if (p && q) r; else function f() {}` -/
def choice : Node :=
  .program ⟨0, 36, ⟨1, 0, 1, 36⟩⟩ [.ifStatement ⟨0, 36, ⟨1, 0, 1, 36⟩⟩
    (some (.logical ⟨4, 10, ⟨1, 4, 1, 10⟩⟩ "&&" (some (.composite ⟨4, 5, ⟨1, 4, 1, 5⟩⟩ "identifier" []))
      (some (.composite ⟨9, 10, ⟨1, 9, 1, 10⟩⟩ "identifier" []))))
    (.expressionStatement ⟨12, 14, ⟨1, 12, 1, 14⟩⟩ none true)
    (some (.functionDeclaration ⟨20, 36, ⟨1, 20, 1, 36⟩⟩ (.function ⟨20, 36, ⟨1, 20, 1, 36⟩⟩ .declaration (some "f") []
      (some (.block ⟨34, 36, ⟨1, 34, 1, 36⟩⟩ [])))))]

theorem choice_numbered : ∃ index, ofProgram choice = .ok index ∧ index.Numbers (choice.preorder .root) ∧
    index.map.statements = [⟨1, 0, 1, 36⟩, ⟨1, 12, 1, 14⟩, ⟨1, 20, 1, 36⟩] := by
  have hok : ((ofProgram choice).toOption.map fun index => index.map.statements) =
      some [⟨1, 0, 1, 36⟩, ⟨1, 12, 1, 14⟩, ⟨1, 20, 1, 36⟩] := by decide +kernel
  cases h : ofProgram choice with
  | error e =>
    rw [h] at hok
    cases hok
  | ok index =>
    rw [h] at hok
    exact ⟨index, rfl, (ofProgram_numbers_preorder choice).2 index h, Option.some.inj hok⟩

end CoverageIndex

end Turnstile
